import PegCompiler.Compiler
import PegCompiler.Config.Options
import PegCompiler.Files.Path
import PegCompiler.Grammar.Document
import PegCompiler.Log
import PegCompiler.Report
import PegCompiler.Resolved.Printer
/-!
  A grammar document on its way from a file to generated code, together with the
  options it is compiled with. Every step tells the log what it does.

  Correspondence (program ↔ here):
    `Database`                                 ↔ `Workspace`
    `from_path`, `read_document`               ↔ `load`
    `load_config`, `read_config`               ↔ `configure`, `readOptions`
    `ir`, `translate`                          ↔ `resolve`, `compile`
    `read_to_string`, `write_string`           ↔ `readText`, `writeText`
    `pretty_error`, `DriverError`, `MainError` ↔ `Error.report`, `failureEntry`, `Error`
-/

namespace PegCompiler

open Files (FileSystem)

/-- A loaded document, where it came from, and the options. -/
structure Workspace where
  path : String
  document : Document
  options : Options := {}

namespace Workspace

/-! ## Errors -/

/-- Why a step has no result. -/
inductive Error where
  | fileNotFound (path : String)
  | files (failure : Files.Failure)
  | invalidDocument (path text : String) (error : Json.ReadError)
  | invalidConfig (path text : String) (error : Config.ReadError)
  | compile (error : CompileError)

/-- The message of an error. -/
def Error.message : Error → String
  | .fileNotFound path => "File not found: " ++ path
  | .files failure => "IO error: " ++ failure.message
  | .invalidDocument path text error =>
    let place := error.place text.toList
    path ++ " is not a valid grammar document: " ++ error.cause.message ++ " (line " ++
      toString place.line ++ ", column " ++ toString place.column ++ ")"
  | .invalidConfig path text error =>
    path ++ " is not a valid configuration: " ++ error.message text
  | .compile error => error.message

/-- What caused an error. -/
def Error.cause : Error → Option String
  | .files failure => some failure.message
  | _ => none

/-- Advice on an error. -/
def Error.help : Error → Option String
  | .invalidDocument .. =>
    some "The document is the JSON encoding of a grammar and its action types."
  | .invalidConfig .. => some "Known keys are module_name, runtime_module, indent and width."
  | .compile (.resolution (.malformed _)) =>
    some "The grammar frontend produced a tree this translator cannot handle."
  | _ => none

/-- The errors that an error is made of. -/
def Error.related : Error → List Report
  | .compile (.resolution (.unresolved references)) =>
    references.map (fun reference => { message := reference.message })
  | _ => []

/-- The report of an error. -/
def Error.report (e : Error) : Report :=
  { message := e.message, cause := e.cause, help := e.help, related := e.related }

/-- The message of errors that stand together. -/
def failedMessage : String := "The grammar could not be translated"

/-- The report of errors that stand together. -/
def failedReport (errors : List Error) : Report :=
  { message := failedMessage, related := errors.map Error.report }

/-! ## The log -/

open Log (Entry)

/-- A list of pairs of numbers. -/
def pathText (path : List (Nat × Nat)) : String :=
  "[" ++ ", ".intercalate
    (path.map (fun p => "(" ++ toString p.1 ++ ", " ++ toString p.2 ++ ")")) ++ "]"

/-- An upper bound, with its kind. -/
def upperText : Option Resolved.Bound → String
  | none => "None"
  | some (.count n) => "Some(Count(" ++ toString n ++ "))"
  | some (.code expr) => "Some(Expr(" ++ Text.quoted expr ++ "))"

/-- A step of resolution in the log. -/
def resolutionEntry : Resolution.Note → Entry
  | .rule id function =>
    ⟨.debug, "fortpeg_backend::cst2ir::rules",
      "Translating rule `" ++ id ++ "` into `" ++ function ++ "`"⟩
  | .alternative index rule path =>
    ⟨.trace, "fortpeg_backend::cst2ir::rules",
      "Translating alternative " ++ toString index ++ " of `" ++ rule ++ "` at " ++ pathText path⟩
  | .repetition min max rule =>
    ⟨.trace, "fortpeg_backend::cst2ir::elements",
      "Repetition " ++ min.shown ++ ".." ++ upperText max ++ " in `" ++ rule ++ "`"⟩
  | .unresolved target rule =>
    ⟨.trace, "fortpeg_backend::cst2ir::elements",
      "Unresolved reference to `" ++ target ++ "` in `" ++ rule ++ "`"⟩
  | .finished rules actions =>
    ⟨.debug, "fortpeg_backend::cst2ir",
      "Resolved " ++ toString rules ++ " rule(s) and " ++ toString actions ++
        " action function(s)"⟩

/-- A step of lowering in the log. -/
def loweringEntry : Lowering.Note → Entry
  | .rule id function =>
    ⟨.debug, "fortpeg_backend::ir2fortran::rules",
      "Lowering rule `" ++ id ++ "` to `" ++ function ++ "`"⟩
  | .emitting moduleName functions =>
    ⟨.debug, "fortpeg_backend::ir2fortran",
      "Emitting module `" ++ moduleName ++ "` with " ++ toString functions ++ " function(s)"⟩

/-- A step on files or on a whole document in the log. -/
def documentEntry (message : String) : Entry :=
  ⟨.debug, "fortpeg_driver::database", message⟩

/-- The failure of a document in the log. -/
def failureEntry (w : Workspace) (e : Error) : Entry :=
  documentEntry ("Translation of " ++ w.path ++ " failed: " ++ e.message)

/-! ## Steps -/

variable {m : Type → Type} [Monad m]

/-- A step, which can fail and tells the log what it does. -/
abbrev Step (m : Type → Type) := ExceptT Error (StateT (List Entry) m)

/-- Tells the log. -/
def tell (entries : List Entry) : Step m Unit :=
  modify (fun log => log ++ entries)

/-- An operation on files. -/
def onFiles {α : Type} (operation : m (Except Files.Failure α)) : Step m α := do
  match ← operation with
  | .ok v => pure v
  | .error failure => throw (.files failure)

section
variable [FileSystem m]

/-- The text of a file. -/
def readText (path : String) : Step m String := do
  if !(← (FileSystem.isThere path : m Bool)) then
    throw (.fileNotFound path)
  let bytes ← onFiles (FileSystem.read path)
  match String.fromUTF8? bytes with
  | some text => pure (String.ofList (Text.joinLineEnds text.toList))
  | none => throw (.files .invalidText)

/-- Loads a document, to be compiled with the default options. -/
def load (path : String) : Step m Workspace := do
  tell [documentEntry ("Loading grammar document " ++ path)]
  let text ← readText path
  match Document.parse text with
  | .ok document => pure { path, document }
  | .error error => throw (.invalidDocument path text error)

/-- The options in a file. -/
def readOptions (path : String) : Step m Options := do
  let text ← readText path
  match Options.parse text with
  | .ok options => pure options
  | .error error => throw (.invalidConfig path text error)

/-- Takes the options from a file. -/
def configure (w : Workspace) (path : String) : Step m Workspace := do
  tell [documentEntry ("Loading configuration " ++ path)]
  return { w with options := ← readOptions path }

/-- Writes a text to a file and makes the directories for it. -/
def writeText (path text : String) : Step m Unit := do
  onFiles (Files.makeRoom path)
  tell [⟨.debug, "fortpeg_driver::fs", "Writing " ++ path⟩]
  onFiles (FileSystem.write path text.toUTF8)

end

/-- Resolves the grammar. -/
def resolve (w : Workspace) : Step m Resolved.Parser := do
  let (result, notes) := Resolution.resolveNoted w.document.grammar w.document.actionTypes
  tell (notes.map resolutionEntry)
  match result with
  | .ok p => pure p
  | .error failure => throw (.compile (.resolution failure))

/-- Compiles the grammar. -/
def compile (w : Workspace) : Step m Compiled := do
  let p ← w.resolve
  tell ((Lowering.notes p w.options).map loweringEntry)
  match writeParser p w.options with
  | .ok compiled =>
    tell [documentEntry ("Translated " ++ w.path ++ " into " ++
      toString (Text.linesOf compiled.source).length ++ " line(s)")]
    pure compiled
  | .error failure => throw (.compile (.lowering failure))

end Workspace

end PegCompiler
