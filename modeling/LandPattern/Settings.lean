import LandPattern.Disk
import LandPattern.Limits
import LandPattern.Number.Integer
import LandPattern.Text.Utf8
import LandPattern.Toml.Document

/-!
# Settings

What a configuration file can set: the limits, and whether the output is spread over lines. The file
is named by the user, or found in the working directory, or in the directory of the user's settings;
without one the standard settings hold. No limit may be zero.
-/

namespace LandPattern

/-- The settings of a run. -/
structure Settings where
  /-- The limits of every evaluation. -/
  limits : Limits
  /-- Whether the output is spread over lines. -/
  pretty : Bool
  deriving DecidableEq, Repr

/-- Why a run ends before anything is evaluated, or without output. -/
inductive HostProblem where
  /-- The configuration file is not a document of settings. -/
  | notSettings
  /-- The configuration file that is asked for does not exist. -/
  | noSettingsFile (file : String)
  /-- A limit is zero. -/
  | zeroLimit (name : String)
  /-- A path cannot be used. -/
  | path (why : PathProblem)
  /-- The configuration file is not a text. -/
  | notText
  deriving DecidableEq, Repr

namespace HostProblem

/-- Whether the problem lies in the configuration, and not in reading or writing. -/
def inConfiguration : HostProblem → Bool
  | .notSettings | .noSettingsFile _ | .zeroLimit _ => true
  | .path _ | .notText => false

/-- The stable code of a problem. -/
def code (p : HostProblem) : String :=
  if p.inConfiguration then "padforge::config" else "padforge::io"

/-- The problem in words. -/
def message : HostProblem → String
  | .notSettings => "Configuration error: Failed to parse TOML configuration: "
  | .noSettingsFile file => s!"Configuration error: Missing configuration file: {file}"
  | .zeroLimit name =>
    s!"Configuration error: Validation error: `limits.{name}` must be greater than zero"
  | .path why => s!"I/O error: {why.words}"
  | .notText => "I/O error: stream did not contain valid UTF-8"

/-- The help that goes with a problem. -/
def help? (p : HostProblem) : Option String :=
  if p.inConfiguration then some "configuration files hold a `[limits]` and an `[output]` table"
  else none

end HostProblem

namespace Settings

open Toml (Entries Node)

/-- The settings that hold without a configuration file. -/
def standard : Settings := ⟨Limits.standard, false⟩

/-- A limit of a file, or the one that holds without it. -/
def limitOf (fallback : Nat) : Option Node → Option Nat
  | none => some fallback
  | some (.int n) => if 0 ≤ n ∧ n ≤ Number.maxCount then some n.toNat else none
  | some _ => none

/-- The limits of a file, where `find` gives what is set for a limit by its name and its place in
the row of all limits. -/
def limitsFrom (find : String → Nat → Option Node) : Option Limits := do
  let d := Limits.standard
  return {
    milliseconds := ← limitOf d.milliseconds (find "timeout_ms" 0)
    operations := ← limitOf d.operations (find "max_operations" 1)
    callDepth := ← limitOf d.callDepth (find "max_call_depth" 2)
    collection := ← limitOf d.collection (find "max_collection_len" 3)
    valueDepth := ← limitOf d.valueDepth (find "max_value_depth" 4)
    nesting := ← limitOf d.nesting (find "max_nesting" 5)
    expression := ← limitOf d.expression (find "max_expression_depth" 6)
    sourceBytes := ← limitOf d.sourceBytes (find "max_source_bytes" 7) }

/-- The limits of a file: a table, a row of limits in their order, or a moment, which sets none. -/
def limitsOf : Option Node → Option Limits
  | none | some (.moment _) => some Limits.standard
  | some (.table _ entries) => limitsFrom fun name _ => entries.lookup name
  | some (.array items) => limitsFrom fun _ place => items[place]?
  | some _ => none

/-- A switch of a file, which is off without it. -/
def switchOf : Option Node → Option Bool
  | none => some false
  | some (.bool on) => some on
  | some _ => none

/-- Whether a file asks for output over lines: in a table, as the first of a row, or not at all. -/
def prettyOf : Option Node → Option Bool
  | none | some (.moment _) => some false
  | some (.table _ entries) => switchOf (entries.lookup "pretty")
  | some (.array items) => switchOf items.head?
  | some _ => none

/-- Whether an entry is fit to be read. A row of settings is looked at only as far as there are
settings; of everything else the numbers have to be such that they can be held. -/
def isReadable : String × Node → Bool
  | (name, .array items) => name == "limits" || name == "output" || Toml.itemsHeld items
  | (_, node) => node.held

/-- The settings that a document holds. Other entries are passed over. -/
def ofText? (text : String) : Option Settings := do
  let entries ← Toml.ofText? text
  if entries.all isReadable then
    return ⟨← limitsOf (entries.lookup "limits"), ← prettyOf (entries.lookup "output")⟩
  else none

/-- The limits with their names, in the order in which they are checked. -/
def named (limits : Limits) : List (String × Nat) :=
  [("timeout_ms", limits.milliseconds), ("max_operations", limits.operations),
    ("max_call_depth", limits.callDepth), ("max_nesting", limits.nesting),
    ("max_source_bytes", limits.sourceBytes), ("max_collection_len", limits.collection),
    ("max_value_depth", limits.valueDepth), ("max_expression_depth", limits.expression)]

/-- Refuses settings with a limit of zero, the first one in order. -/
def check (settings : Settings) : Except HostProblem Settings :=
  match (named settings.limits).find? fun limit => limit.2 == 0 with
  | some (name, _) => .error (.zeroLimit name)
  | none => .ok settings

/-- The settings of the file at a path. -/
def ofFile (disk : Disk) (path : String) : Except HostProblem Settings :=
  if !disk.reaches path then .error (.noSettingsFile path)
  else match disk.read path with
    | .error why => .error (.path why)
    | .ok bytes =>
      match Text.ofBytes bytes with
      | .error _ => .error .notText
      | .ok text =>
        match ofText? text with
        | none => .error .notSettings
        | some settings => settings.check

/-- Where a configuration file is looked for in the working directory. -/
def localPath : String := "padforge/config.toml"

/-- The settings of the file that is asked for, or of the first one found, or the standard ones.
`userPath` is where the user's settings are looked for. -/
def find (disk : Disk) (asked : Option String) (userPath : String) :
    Except HostProblem Settings :=
  match asked with
  | some path => ofFile disk path
  | none =>
    if disk.reaches localPath then ofFile disk localPath
    else if disk.reaches userPath then ofFile disk userPath
    else .ok standard

end Settings

end LandPattern
