import LandPattern.Batch
import LandPattern.Fault.Report

/-!
# The program

Reads the command line and the files it names, runs the batch, writes its output, and tells about
faults and problems. The exit code is 0 when every script succeeded, 1 when there is no output, and
2 when a script failed or the command line cannot be used.
-/

namespace LandPattern

/-- The problem that a refusal of the operating system stands for. -/
def problemOf : IO.Error → PathProblem
  | .noFileOrDirectory .. => .missing
  | .inappropriateType _ code _ => if code = 20 then .notADirectory else .isADirectory
  | .invalidArgument _ code _ => if code = 36 then .nameTooLong else .missing
  | _ => .denied

/-- What stands at a path. -/
def look (path : String) : IO (Except PathProblem Found) := do
  match ← (IO.FS.readBinFile path).toBaseIO with
  | .ok bytes => return .ok (.file bytes.toList)
  | .error e =>
    match problemOf e with
    | .isADirectory => return .ok .directory
    | problem => return .error problem

/-- What stands at these paths. That a file can be written shows when it is written. -/
def diskOf (paths : List String) : IO Disk := do
  let found ← paths.mapM fun path => return (path, ← look path)
  return ⟨fun path => (found.lookup path).getD (.error .missing), fun _ => .ok ()⟩

/-- Where the user's settings are looked for. -/
def userPath : IO String := do
  let home := (← IO.getEnv "HOME").getD ""
  let named := (← IO.getEnv "XDG_CONFIG_HOME").filter (·.startsWith "/")
  return named.getD (home ++ "/.config") ++ "/padforge/config.toml"

/-- Writes the output to where the command line says. -/
def write (line : CommandLine) (text : String) : IO (Except HostProblem Unit) := do
  match line.output with
  | none => (← IO.getStdout).putStr text; return .ok ()
  | some path =>
    match ← (IO.FS.writeFile path text).toBaseIO with
    | .ok () => return .ok ()
    | .error e => return .error (.path (problemOf e))

/-- Tells something about the run, unless the command line asks for silence. -/
def tell (line : CommandLine) (text : String) : IO Unit := do
  unless line.logLevel == some "off" do IO.eprint text

/-- Tells why there is no output. -/
def tellProblem (line : CommandLine) (problem : HostProblem) : IO UInt32 := do
  tell line s!"{problem.code}: {problem.message}\n"
  for help in problem.help? do tell line s!"  help: {help}\n"
  return 1

/-- Runs a command line. -/
def runLine (line : CommandLine) : IO UInt32 := do
  let user ← userPath
  let disk ← diskOf (line.config.toList ++ [Settings.localPath, user] ++ line.inputs)
  match Batch.run disk line user with
  | .error problem => tellProblem line problem
  | .ok batch =>
    match ← write line (batch.output Fault.report) with
    | .error problem => tellProblem line problem
    | .ok () =>
      for fault in batch.faults do tell line fault.report
      return if batch.faults.isEmpty then 0 else 2

/-- What the program is for and how it is called. -/
def usage : String :=
  "Usage: padforge [OPTIONS] <INPUTS>...\n\n" ++
  "Evaluates footprint scripts and writes their records as JSON.\n\n" ++
  "  -o, --output <OUTPUT>        Path to the output JSON file; stdout when absent\n" ++
  "  -c, --config <CONFIG>        Path to configuration file (TOML)\n" ++
  "      --pretty                 Pretty-print the JSON output\n" ++
  "      --log-level <LOG_LEVEL>  Log level (off, error, warn, info, debug, trace)\n" ++
  "  -h, --help                   Print help\n" ++
  "  -V, --version                Print version"

/-- Answers a command line that does not begin a run. -/
def answerUsage : CommandLine.Usage → IO UInt32
  | .displayHelp => do IO.println usage; return 0
  | .displayVersion => do IO.println "padforge 0.1.0"; return 0
  | problem => do
    IO.eprintln s!"error: {problem.word}\n\n{usage}"
    return 2

end LandPattern

open LandPattern in
/-- Runs the program on its words. -/
def main (words : List String) : IO UInt32 :=
  match CommandLine.ofWords words with
  | .error problem => answerUsage problem
  | .ok line => runLine line
