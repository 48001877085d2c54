import PegCompiler.Files.System
/-!
  Paths, and the directories that have to be there before a file can be written.

  Correspondence (program ↔ here):
    the directories that `write_string` makes ↔ `makeRoom`
-/

namespace PegCompiler.Files

/-- Whether a path starts at the root. -/
def isAbsolute (path : String) : Bool :=
  path.toList.head? == some '/'

/-- The names in a path. Of dots that stand for the directory itself, only the first
name can be one. -/
def pathNames (path : String) : List String :=
  match (path.splitOn "/").filter (fun n => n != "") with
  | [] => []
  | n :: rest =>
    let rest := rest.filter (fun n => n != ".")
    if n == "." && isAbsolute path then rest else n :: rest

/-- The path without its last name. -/
def parent (path : String) : Option String :=
  match (pathNames path).reverse with
  | [] => none
  | _ :: rest =>
    some ((if isAbsolute path then "/" else "") ++ "/".intercalate rest.reverse)

variable {m : Type → Type} [Monad m] [FileSystem m]

/-- Makes a directory and those above it that are not there. A path has fewer levels
than characters. -/
def makeDirectories : Nat → String → m (Except Failure Unit)
  | 0, _ => pure (.error .notFound)
  | levels + 1, path => do
    if path == "" then return .ok ()
    let unlessThere (failure : Failure) : m (Except Failure Unit) := do
      return if ← FileSystem.isDirectory path then .ok () else .error failure
    match ← FileSystem.makeDirectory path with
    | .ok () => pure (.ok ())
    | .error .notFound =>
      match parent path with
      | none => pure (.error (.other "failed to create whole tree"))
      | some above =>
        match ← makeDirectories levels above with
        | .error failure => pure (.error failure)
        | .ok () =>
          match ← FileSystem.makeDirectory path with
          | .ok () => pure (.ok ())
          | .error failure => unlessThere failure
    | .error failure => unlessThere failure

/-- Makes the directory of a file if it is not there. -/
def makeRoom (path : String) : m (Except Failure Unit) := do
  match parent path with
  | none => pure (.ok ())
  | some above =>
    if above == "" || (← FileSystem.isThere above) then pure (.ok ())
    else makeDirectories (above.length + 1) above

end PegCompiler.Files
