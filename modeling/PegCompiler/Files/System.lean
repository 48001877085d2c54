/-!
  What the compiler does to files, whether they are on a disk or in memory, and
  what can go wrong.
-/

namespace PegCompiler.Files

/-- Why a file could not be used. -/
inductive Failure where
  | notFound
  | alreadyThere
  | notDirectory
  | isDirectory
  | nameTooLong
  /-- A path with a null character. -/
  | nullInPath
  /-- The bytes of a file that are no text. -/
  | invalidText
  /-- Anything else that an operating system reports. -/
  | other (text : String)
  deriving DecidableEq, Repr

/-- The message of a failure. -/
def Failure.message : Failure → String
  | .notFound => "No such file or directory (os error 2)"
  | .alreadyThere => "File exists (os error 17)"
  | .notDirectory => "Not a directory (os error 20)"
  | .isDirectory => "Is a directory (os error 21)"
  | .nameTooLong => "File name too long (os error 36)"
  | .nullInPath => "file name contained an unexpected NUL byte"
  | .invalidText => "stream did not contain valid UTF-8"
  | .other text => text

/-- The operations on files. -/
class FileSystem (m : Type → Type) where
  /-- Whether there is a file or a directory. -/
  isThere (path : String) : m Bool
  /-- Whether there is a directory. -/
  isDirectory (path : String) : m Bool
  /-- The bytes of a file. -/
  read (path : String) : m (Except Failure ByteArray)
  /-- Puts bytes into a new file or in place of those of an old one. -/
  write (path : String) (bytes : ByteArray) : m (Except Failure Unit)
  /-- Makes a directory in one that is there. -/
  makeDirectory (path : String) : m (Except Failure Unit)

end PegCompiler.Files
