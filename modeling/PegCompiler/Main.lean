import PegCompiler.CommandLine.Program
/-!
  The command line on a real file system.
-/

namespace PegCompiler

open Files (Failure FileSystem)

/-- What an error of the system means for a file. -/
def failureOf : IO.Error → Failure
  | .noFileOrDirectory .. => .notFound
  | .alreadyExists .. => .alreadyThere
  | .inappropriateType _ 21 _ => .isDirectory
  | .inappropriateType .. => .notDirectory
  | e => .other (toString e)

/-- An operation of the system with its failure as a value. -/
def attempted {α : Type} (operation : IO α) : IO (Except Failure α) := do
  try return .ok (← operation)
  catch e => return .error (failureOf e)

/-- Whether a path can be opened, as a file or as a directory. -/
def canOpen (path : String) : IO Bool := do
  try
    let _ ← IO.FS.Handle.mk path .read
    pure true
  catch
    | .permissionDenied .. => pure true
    | _ => pure false

/-- Whether a path opens and nothing can be read from it. -/
def isUnreadable (path : String) : IO Bool := do
  try
    let handle ← IO.FS.Handle.mk path .read
    let _ ← handle.read 1
    pure false
  catch _ => canOpen path

instance : FileSystem IO where
  isThere := canOpen
  isDirectory := isUnreadable
  read path := attempted (IO.FS.readBinFile path)
  write path bytes := attempted (IO.FS.writeBinFile path bytes)
  makeDirectory path := attempted (IO.FS.createDir path)

end PegCompiler

open PegCompiler in
/-- Runs the program. -/
def main (args : List String) : IO UInt32 := do
  let settings := CommandLine.Settings.ofEnvironment (← IO.getEnv "FORTPEG_COLORIZE")
    (← IO.getEnv "FORTPEG_LOG_LEVEL")
  let outcome ← CommandLine.run settings args
  (← IO.getStdout).putStr outcome.stdout
  (← IO.getStderr).putStr outcome.stderr
  return outcome.code
