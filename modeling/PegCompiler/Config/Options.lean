import PegCompiler.Config.Reader
import PegCompiler.Lowering.Parser
/-!
  Options from configuration files. Keys that a file leaves out keep their
  defaults; the first unknown, repeated or ill-typed key in the order of the file
  is an error.

  Correspondence (program ↔ here):
    `CodegenCfg` read from a table ↔ `Options.parse`
    `CodegenCfg::default`          ↔ the defaults of `Lowering.Options`
    `read_config`                  ↔ `Options.parse` in `Workspace.configure`
-/

namespace PegCompiler

namespace Config

/-- The options that assignments have given so far. -/
structure Given where
  moduleName : Option String := none
  runtimeModule : Option String := none
  indent : Option UInt64 := none
  width : Option UInt64 := none
  deriving DecidableEq, Repr

/-- A text. -/
def stringOption (key : String) : Value → Except Cause String
  | .string s => .ok s
  | v => .error (.wrongType v "a string" key)

/-- A natural number. -/
def sizeOption (key : String) : Value → Except Cause UInt64
  | .integer n =>
    if 0 ≤ n then .ok (UInt64.ofNat n.toNat) else .error (.wrongValue (.integer n) "usize" key)
  | v => .error (.wrongType v "usize" key)

/-- The options with one more, which must not have been given before. -/
def Given.add (g : Given) (key : String) (v : Value) : Except Cause Given :=
  let fresh (isNone : Bool) (read : Except Cause Given) : Except Cause Given :=
    if isNone then read else .error (.duplicateKey key)
  if key == "module_name" then
    fresh g.moduleName.isNone ((stringOption key v).map fun s => { g with moduleName := some s })
  else if key == "runtime_module" then
    fresh g.runtimeModule.isNone
      ((stringOption key v).map fun s => { g with runtimeModule := some s })
  else if key == "indent" then
    fresh g.indent.isNone ((sizeOption key v).map fun n => { g with indent := some n })
  else if key == "width" then
    fresh g.width.isNone ((sizeOption key v).map fun n => { g with width := some n })
  else .error (.unknownKey key)

/-- Whether an error is at the value it is about. Arrays have no place of their
own. -/
def Cause.isAtValue : Cause → Bool
  | .wrongType .array _ _ => false
  | .wrongType .. | .wrongValue .. => true
  | _ => false

/-- The options of assignments. An error that is not at a value is at the start of the
last section, or of the file. -/
def Given.addAll (last : List Char) : Given → List Entry → Except ReadError Given
  | g, [] => .ok g
  | g, e :: rest =>
    match g.add e.key e.value with
    | .ok g => g.addAll last rest
    | .error cause => .error ⟨cause, if cause.isAtValue then e.rest else last⟩

/-- The options with those of a section, which no option can take. -/
def Given.addSection (last : List Char) (g : Given) (s : Section) : Except ReadError Given :=
  match g.add s.key (if s.isItem then .array else .table) with
  | .ok g => .ok g
  | .error cause => .error ⟨cause, last⟩

end Config

/-- The options of a configuration file. -/
def Options.parse (text : String) : Except Config.ReadError Options := do
  let file ← Config.file text
  let last := match file.sections.getLast? with
    | some s => s.rest
    | none => Config.fileChars text
  let given ← Config.Given.addAll last {} file.entries
  let given ← match file.sections.head? with
    | some s => given.addSection last s
    | none => pure given
  let defaults : Options := {}
  pure {
    moduleName := given.moduleName.getD defaults.moduleName
    runtimeModule := given.runtimeModule.getD defaults.runtimeModule
    indent := given.indent.getD defaults.indent
    width := given.width.getD defaults.width }

end PegCompiler
