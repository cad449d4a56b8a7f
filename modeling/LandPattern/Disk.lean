/-!
# Disks

What a run can see of the files around it: what stands at a path, and whether a file can be written
there. Every way of not getting to a file has its own words.
-/

namespace LandPattern

/-- Why a path cannot be used. -/
inductive PathProblem where
  /-- Nothing is there. -/
  | missing
  /-- A file stands where the path needs a directory. -/
  | notADirectory
  /-- A directory stands where a file is needed. -/
  | isADirectory
  /-- Someone else's file or directory stands in the way. -/
  | denied
  /-- The path or one of its names is too long. -/
  | nameTooLong
  /-- The path holds a zero byte. -/
  | zeroByte
  deriving DecidableEq, Repr

/-- The problem in words. -/
def PathProblem.words : PathProblem → String
  | .missing => "No such file or directory (os error 2)"
  | .notADirectory => "Not a directory (os error 20)"
  | .isADirectory => "Is a directory (os error 21)"
  | .denied => "Permission denied (os error 13)"
  | .nameTooLong => "File name too long (os error 36)"
  | .zeroByte => "file name contained an unexpected NUL byte"

/-- What stands at the end of a path. -/
inductive Found where
  | file (bytes : List UInt8)
  | directory

/-- What counts as the length of a directory, in bytes. -/
def directoryLength : Nat := 4096

/-- The length of what is found, in bytes. -/
def Found.length : Found → Nat
  | .file bytes => bytes.length
  | .directory => directoryLength

/-- The files around a run. -/
structure Disk where
  /-- What a path leads to. -/
  find : String → Except PathProblem Found
  /-- Refuses a path at which no file can be written. -/
  checkWritable : String → Except PathProblem Unit

namespace Disk

/-- Whether a path leads anywhere. -/
def reaches (disk : Disk) (path : String) : Bool :=
  match disk.find path with
  | .ok _ => true
  | .error _ => false

/-- The bytes of the file that a path leads to. -/
def read (disk : Disk) (path : String) : Except PathProblem (List UInt8) := do
  match ← disk.find path with
  | .file bytes => return bytes
  | .directory => throw .isADirectory

end Disk

end LandPattern
