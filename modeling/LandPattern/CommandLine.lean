/-!
# The command line

Scripts to evaluate are given by their paths, in any order with options. An option takes a value,
from the same word or from the next one, and can be given once. A word that begins with a dash is
never the value of an option before it, and after two dashes every word is a path.
-/

namespace LandPattern

/-- What a command line asks for. -/
structure CommandLine where
  /-- The scripts, in order. -/
  inputs : List String
  /-- Where the output goes. -/
  output : Option String
  /-- The configuration file. -/
  config : Option String
  /-- Whether the output is spread over lines. -/
  pretty : Bool
  /-- How much is told about the run. -/
  logLevel : Option String
  deriving DecidableEq, Repr

namespace CommandLine

/-- Why a command line does not begin a run. -/
inductive Usage where
  /-- No script is given. -/
  | missingRequiredArgument
  /-- An option has no value. -/
  | invalidValue
  /-- No option is called this. -/
  | unknownArgument
  /-- An option is given twice. -/
  | argumentConflict
  /-- A switch is given a value. -/
  | tooManyValues
  /-- Help is asked for. -/
  | displayHelp
  /-- The version is asked for. -/
  | displayVersion
  deriving DecidableEq, Repr

/-- The stable name of a usage problem. -/
def Usage.word : Usage → String
  | .missingRequiredArgument => "MissingRequiredArgument"
  | .invalidValue => "InvalidValue"
  | .unknownArgument => "UnknownArgument"
  | .argumentConflict => "ArgumentConflict"
  | .tooManyValues => "TooManyValues"
  | .displayHelp => "DisplayHelp"
  | .displayVersion => "DisplayVersion"

/-- The log level that holds without an option. -/
def standardLogLevel : String := "info"

/-- The options that take a value. -/
inductive Setting where
  | output | config | logLevel
  deriving DecidableEq, Repr

/-- The options that take none. -/
inductive Switch where
  | pretty | help | version
  deriving DecidableEq, Repr

/-- What a word with a dash can name. -/
inductive Named where
  | setting (what : Setting)
  | switch (what : Switch)
  deriving DecidableEq, Repr

/-- What a name after two dashes stands for. -/
def ofLong? (name : String) : Option Named :=
  [("output", Named.setting .output), ("config", .setting .config),
    ("log-level", .setting .logLevel), ("pretty", .switch .pretty), ("help", .switch .help),
    ("version", .switch .version)].lookup name

/-- What a letter after one dash stands for. -/
def ofShort? (letter : Char) : Option Named :=
  [('o', Named.setting .output), ('c', .setting .config), ('h', .switch .help),
    ('V', .switch .version)].lookup letter

/-- An option that was named, before it is settled. -/
inductive Pending where
  | nothing
  /-- No value has come yet. -/
  | waiting (what : Setting)
  | given (what : Setting) (value : String)

/-- What the words so far ask for. -/
structure Progress where
  /-- What is settled. -/
  line : CommandLine
  /-- The last option. -/
  pending : Pending

/-- Sets an option that is not set yet. -/
def set (line : CommandLine) (what : Setting) (value : String) : Except Usage CommandLine :=
  let unlessGiven (old : Option String) (changed : CommandLine) : Except Usage CommandLine :=
    if old.isSome then .error .argumentConflict else .ok changed
  match what with
  | .output => unlessGiven line.output { line with output := some value }
  | .config => unlessGiven line.config { line with config := some value }
  | .logLevel => unlessGiven line.logLevel { line with logLevel := some value }

namespace Progress

/-- Nothing is asked for. -/
def start : Progress := ⟨⟨[], none, none, false, none⟩, .nothing⟩

/-- Settles the last option. -/
def settle (p : Progress) : Except Usage Progress :=
  match p.pending with
  | .nothing => .ok p
  | .waiting _ => .error .invalidValue
  | .given what value => do
    return ⟨← p.line.set what value, .nothing⟩

/-- An option whose value may be attached to its name. -/
def setting (p : Progress) (what : Setting) (value : Option String) : Except Usage Progress := do
  let settled ← p.settle
  match value with
  | none => return { settled with pending := .waiting what }
  | some value => return ⟨← settled.line.set what value, .nothing⟩

/-- An option without a value. -/
def switch (p : Progress) (what : Switch) : Except Usage Progress := do
  let settled ← p.settle
  match what with
  | .pretty =>
    if settled.line.pretty then throw .argumentConflict
    else return { settled with line := { settled.line with pretty := true } }
  | .help => throw .displayHelp
  | .version => throw .displayVersion

/-- A word after two dashes: a name, and perhaps a value after the first equals sign. -/
def long (p : Progress) (word : List Char) : Except Usage Progress :=
  let name := word.takeWhile (· != '=')
  let value := match word.dropWhile (· != '=') with
    | [] => none
    | _ :: value => some (String.ofList value)
  match ofLong? (String.ofList name) with
  | none => .error .unknownArgument
  | some (.setting what) => p.setting what value
  | some (.switch what) => if value.isSome then .error .tooManyValues else p.switch what

/-- Letters after one dash: switches, up to an option, which takes what follows as its value. -/
def short (p : Progress) (letters : List Char) : Except Usage Progress :=
  match letters with
  | [] => .ok p
  | letter :: rest =>
    match ofShort? letter with
    | none => .error .unknownArgument
    | some (.setting what) =>
      match rest with
      | [] => p.setting what none
      | '=' :: value => p.setting what (some (String.ofList value))
      | value => p.setting what (some (String.ofList value))
    | some (.switch what) => do short (← p.switch what) rest

/-- A script. -/
def input (p : Progress) (path : String) : Except Usage Progress := do
  let settled ← p.settle
  return { settled with line := { settled.line with inputs := settled.line.inputs ++ [path] } }

/-- A word without a dash: the value of an option that waits for one, or a script. -/
def plain (p : Progress) (word : String) : Except Usage Progress :=
  match p.pending with
  | .waiting what => .ok { p with pending := .given what word }
  | _ => p.input word

/-- A word before two lone dashes. -/
def word (p : Progress) (written : String) : Except Usage Progress :=
  match written.toList with
  | '-' :: '-' :: name => p.long name
  | '-' :: letter :: letters => p.short (letter :: letters)
  | _ => p.plain written

/-- All words; `paths` tells that two lone dashes have come. -/
def words (p : Progress) (paths : Bool) : List String → Except Usage Progress
  | [] => p.settle
  | w :: rest =>
    if paths then do words (← p.input w) true rest
    else if w = "--" then words p true rest
    else do words (← p.word w) false rest

end Progress

/-- What the words of a command line ask for. -/
def ofWords (words : List String) : Except Usage CommandLine := do
  let p ← Progress.start.words false words
  if p.line.inputs.isEmpty then throw .missingRequiredArgument else return p.line

end CommandLine

end LandPattern
