import PegCompiler.Files.Path
/-!
  Files in memory: a tree of directories with a working directory, in which
  relative paths start. A path is followed name by name, and everything but its
  last name has to be a directory.
-/

namespace PegCompiler.Files

/-- What is at a place of the tree. -/
inductive Node where
  | directory
  | file (bytes : ByteArray)

/-- Files in memory, each under the names on the way from the root. -/
structure Store where
  nodes : List (List String × Node) := []
  /-- The working directory, one level below the root. -/
  here : List String := ["here"]

/-- Where a path leads. -/
inductive Target where
  | directory
  | file (names : List String) (bytes : ByteArray)
  /-- Nothing yet, in a directory that is there. -/
  | free (names : List String)

namespace Store

/-- What is at a place; the root and the working directory are always there. -/
def node (s : Store) (names : List String) : Option Node :=
  if names.isEmpty || names == s.here then some .directory else s.nodes.lookup names

/-- The store with something at a place. -/
def put (s : Store) (names : List String) (n : Node) : Store :=
  { s with nodes := (names, n) :: s.nodes.filter (fun entry => entry.1 != names) }

/-- The length of the longest name, in bytes. -/
def longestName : Nat := 255

/-- The length of the longest path, in bytes. -/
def longestPath : Nat := 4095

/-- Follows names from a directory on. -/
def follow (s : Store) (current : List String) : List String → Except Failure Target
  | [] => .ok .directory
  | n :: rest =>
    if n == "" || n == "." then s.follow current rest
    else if n == ".." then s.follow current.dropLast rest
    else if longestName < n.utf8ByteSize then .error .nameTooLong
    else
      let names := current ++ [n]
      match s.node names with
      | some .directory => s.follow names rest
      | some (.file bytes) => if rest.isEmpty then .ok (.file names bytes) else .error .notDirectory
      | none => if rest.isEmpty then .ok (.free names) else .error .notFound

/-- Follows a path. -/
def find (s : Store) (path : String) : Except Failure Target :=
  if path == "" then .error .notFound
  else if path.toList.contains '\x00' then .error .nullInPath
  else if longestPath < path.utf8ByteSize then .error .nameTooLong
  else s.follow (if isAbsolute path then [] else s.here) (path.splitOn "/")

/-- A path without slashes at its end. -/
def withoutSlashes (path : String) : String :=
  match (path.toList.reverse.dropWhile (fun c => c == '/')).reverse with
  | [] => if path == "" then "" else "/"
  | cs => String.ofList cs

/-- Reads a file. -/
def read (s : Store) (path : String) : Except Failure ByteArray :=
  match s.find path with
  | .ok (.file _ bytes) => .ok bytes
  | .ok .directory => .error .isDirectory
  | .ok (.free _) => .error .notFound
  | .error failure => .error failure

/-- Writes a file. A path that ends in a slash can only name a directory. -/
def write (s : Store) (path : String) (bytes : ByteArray) : Except Failure Store :=
  match s.find (withoutSlashes path) with
  | .error failure => .error failure
  | .ok .directory => .error .isDirectory
  | .ok (.file names _) | .ok (.free names) =>
    if path == withoutSlashes path then .ok (s.put names (.file bytes)) else .error .isDirectory

/-- Makes a directory. -/
def makeDirectory (s : Store) (path : String) : Except Failure Store :=
  match s.find (withoutSlashes path) with
  | .error failure => .error failure
  | .ok (.free names) => .ok (s.put names .directory)
  | .ok _ => .error .alreadyThere

/-- The store with a file or a directory in the working directory, and the directories
above it. -/
def add (s : Store) (path : String) (n : Node) : Store :=
  let names := s.here ++ (pathNames path).filter (fun n => n != ".")
  let above := (List.range' 2 (names.length - 2)).map (fun k => names.take k)
  (above.foldl (fun s names => if (s.node names).isSome then s else s.put names .directory) s).put
    names n

/-- Keeps the store that an operation gives, if it gives one. -/
def update (f : Store → Except Failure Store) : StateM Store (Except Failure Unit) :=
  fun s =>
    match f s with
    | .ok s => (.ok (), s)
    | .error failure => (.error failure, s)

end Store

instance : FileSystem (StateM Store) where
  isThere path := return match (← get).find path with
    | .ok .directory | .ok (.file ..) => true
    | _ => false
  isDirectory path := return match (← get).find path with
    | .ok .directory => true
    | _ => false
  read path := return (← get).read path
  write path bytes := Store.update (fun s => s.write path bytes)
  makeDirectory path := Store.update (fun s => s.makeDirectory path)

end PegCompiler.Files
