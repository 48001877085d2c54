import PegCompiler.CommandLine.Settings
import PegCompiler.CommandLine.Usage
import PegCompiler.Workspace
/-!
  The program behind the command line. Generated text goes to the standard output
  or to a file; the log and the reports of errors go to the standard error.

  Correspondence (program ↔ here):
    `cli::exec`                                ↔ `run`
    `Input::open`                              ↔ `openWorkspace`
    `compile::exec`, `ir::exec`, `check::exec` ↔ `runCompile`, `runIr`, `runCheck`
    `terminal::width`                          ↔ `terminalWidth`, no terminal being there
-/

namespace PegCompiler.CommandLine

open Files (FileSystem)
open Layout (IgnoreColors)

/-- What a run of the program leaves, apart from files. -/
structure Outcome where
  code : UInt32
  stdout : String := ""
  stderr : String := ""
  deriving DecidableEq, Repr

variable {m : Type → Type} [Monad m] [FileSystem m]

/-- A part of a run: it tells the log what it does and fails with reports. -/
abbrev Run (m : Type → Type) := ExceptT (List Report) (StateT (List Log.Entry) m)

/-- A step whose error is reported as it is. -/
def plain {α : Type} (step : Workspace.Step m α) : Run m α :=
  ExceptT.mk (do
    match ← step.run with
    | .ok v => pure (.ok v)
    | .error e => pure (.error [e.report]))

/-- A step on a loaded document, whose error the log is told too. -/
def translating {α : Type} (w : Workspace) (step : Workspace.Step m α) : Run m α :=
  ExceptT.mk (do
    match ← step.run with
    | .ok v => pure (.ok v)
    | .error e =>
      modify (fun log => log ++ [w.failureEntry e])
      pure (.error [e.report]))

/-- Loads the document and the options of a command. -/
def openWorkspace (file : String) (g : Given) : Run m Workspace := do
  let w ← plain (Workspace.load file)
  match g.config with
  | some config => plain (w.configure config)
  | none => pure w

/-- The options with those that stand in the arguments, which come first. -/
def withArguments (o : Options) (g : Given) : Options :=
  { o with
    moduleName := g.moduleName.getD o.moduleName
    runtimeModule := g.runtimeModule.getD o.runtimeModule
    indent := g.indent.getD o.indent }

/-- Compiles a document; the result is what goes to the standard output. -/
def runCompile (file : String) (g : Given) : Run m String := do
  let w ← openWorkspace file g
  let w := { w with options := withArguments w.options g }
  let compiled ← translating w w.compile
  let out ← match g.output with
    | some path => do
      plain (Workspace.writeText path compiled.source)
      pure ""
    | none => pure compiled.source
  modify (fun log => log ++ [⟨.info, "fortpeg::cli::compile",
    "Translated " ++ file ++ " with " ++ toString compiled.actions.length ++
      " action function(s)"⟩])
  pure out

/-- The width of a terminal that is not known. -/
def terminalWidth : Nat := 132

/-- Prints the resolved grammar of a document with colors; a file and an output
that shows none drop them. -/
def runIr (settings : Settings) (file : String) (g : Given) : Run m String := do
  let w ← openWorkspace file g
  let p ← translating w w.resolve
  let page := w.options.page
  match g.output with
  | some path =>
    let file := (p.doc page).printColored page.width (IgnoreColors.mk "")
    match ← (FileSystem.write path file.inner.toUTF8 : m (Except Files.Failure Unit)) with
    | .ok () => pure ""
    | .error failure =>
      throw [{ message := "Failed to print the IR: " ++ failure.message }]
  | none =>
    let page := { page with width := terminalWidth }
    pure ((p.doc page).show (settings.color == .always) page.width)

/-- Checks that a document can be compiled. -/
def runCheck (file : String) (g : Given) : Run m String := do
  let w ← openWorkspace file g
  let _ ← translating w w.compile
  pure (file ++ " translated successfully!\n")

/-- Runs a command. -/
def runCommand (settings : Settings) : Verb → String → Given → Run m String
  | .compile, file, g => runCompile file g
  | .ir, file, g => runIr settings file g
  | .check, file, g => runCheck file g

/-- Runs the program. -/
def run (settings : Settings) (args : List String) : m Outcome := do
  match Request.parse args with
  | .error e => pure { code := 2, stderr := e.text }
  | .ok .version => pure { code := 0, stdout := versionText }
  | .ok (.help topic) => pure { code := 0, stdout := helpText topic }
  | .ok (.run verb file g) => do
    let (result, log) ← (runCommand settings verb file g : Run m String).run.run []
    let told := Log.lines (settings.color == .always) settings.log log
    match result with
    | .ok stdout => pure { code := 0, stdout, stderr := told }
    | .error reports =>
      pure { code := 1, stderr := told ++ Report.renderAll settings.color.theme reports }

end PegCompiler.CommandLine
