import LandPattern.Disk

/-!
# Files

A working directory as data: files by the names that lead to them, and the directories these imply.
Paths are followed one name at a time. What lies outside of the working directory is not known and
counts as missing.
-/

namespace LandPattern

/-- The files of a working directory. -/
structure Files where
  /-- Every file: the names that lead to it, and its bytes. -/
  entries : List (List String × List UInt8)

namespace Files

/-- A directory that a path has come to. -/
inductive Place where
  /-- The names that lead to it from the working directory. -/
  | inside (names : List String)
  /-- Somewhere outside of the working directory. -/
  | outside

/-- The names of a path; empty ones stand for repeated and closing slashes. -/
def split (path : String) : List String := path.splitOn "/"

/-- The files at these paths. -/
def ofList (files : List (String × List UInt8)) : Files :=
  ⟨files.map fun (path, bytes) => ((split path).filter fun name => name ≠ "" ∧ name ≠ ".", bytes)⟩

/-- What stands under these names. -/
def at? (files : Files) (names : List String) : Option Found :=
  match files.entries.lookup names with
  | some bytes => some (.file bytes)
  | none =>
    if files.entries.any fun entry => names.isPrefixOf entry.1 then some .directory else none

/-- The longest name, in bytes. -/
def longestName : Nat := 255

/-- The longest path, in bytes. -/
def longestPath : Nat := 4095

/-- Follows names from a directory. -/
def follow (files : Files) (place : Place) : List String → Except PathProblem Found
  | [] => .ok .directory
  | name :: rest =>
    if name = "" ∨ name = "." then follow files place rest
    else if name = ".." then
      match place with
      | .inside (first :: more) => follow files (.inside (first :: more).dropLast) rest
      | _ => follow files .outside rest
    else if longestName < name.utf8ByteSize then .error .nameTooLong
    else match place with
      | .outside => .error .missing
      | .inside names =>
        match files.at? (names ++ [name]) with
        | none => .error .missing
        | some (.file bytes) => if rest.isEmpty then .ok (.file bytes) else .error .notADirectory
        | some .directory => follow files (.inside (names ++ [name])) rest

/-- Where a path begins, and its names. -/
def start (path : String) : Place × List String :=
  if path.startsWith "/" then (.outside, split path) else (.inside [], split path)

/-- Refuses texts that cannot be paths. -/
def checkPath (path : String) : Except PathProblem Unit :=
  if path.contains (Char.ofNat 0) then .error .zeroByte
  else if longestPath < path.utf8ByteSize then .error .nameTooLong
  else if path = "" then .error .missing
  else .ok ()

/-- What a path leads to. -/
def find (files : Files) (path : String) : Except PathProblem Found := do
  checkPath path
  let (place, names) := start path
  follow files place names

/-- The names of the directory that a path needs, its last name, and whether slashes close it. -/
def parent (names : List String) : List String × String × Bool :=
  match names.reverse.dropWhile (· = "") with
  | [] => ([], "", true)
  | last :: before => (before.reverse, last, names.getLast? = some "")

/-- Whether a file can be written at a path: its directory exists, and no directory stands there. A
path that slashes close is one of a directory, whatever stands there. -/
def checkWritable (files : Files) (path : String) : Except PathProblem Unit := do
  checkPath path
  let (place, names) := start path
  let (directory, last, closed) := parent names
  match ← follow files place directory with
  | .file _ => throw .notADirectory
  | .directory => if closed || last = "." || last = ".." then throw .isADirectory
  match follow files place names, place with
  | .ok (.file _), _ => return ()
  | .ok .directory, _ => throw .isADirectory
  | .error .missing, .inside _ => return ()
  | .error other, _ => throw other

/-- The working directory as the files around a run. -/
def disk (files : Files) : Disk := ⟨files.find, files.checkWritable⟩

end Files

end LandPattern
