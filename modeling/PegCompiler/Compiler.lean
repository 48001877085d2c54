import PegCompiler.Lowering.Parser
import PegCompiler.Resolution.Grammar
import PegCompiler.Text.Lines
/-!
  The compiler: a grammar and the types of its actions become the text of a
  Fortran module, or the reason why there is none. There is no partial output.

  Correspondence (program ↔ here):
    `translate`, `Translation` ↔ `compile`, `Compiled`
    `BackendError`             ↔ `CompileError`
    `tidy`                     ↔ `Text.tidy`
-/

namespace PegCompiler

/-- Why a grammar has no module. -/
inductive CompileError where
  | resolution (failure : Resolution.Failure)
  | lowering (failure : Lowering.Failure)
  deriving DecidableEq, Repr

/-- The message of an error. -/
def CompileError.message : CompileError → String
  | .resolution (.malformed m) => m.message
  | .resolution (.unresolved references) =>
    "The grammar contains " ++ toString references.length ++ " unresolved rule reference(s)"
  | .lowering failure => failure.message

/-- A generated document, and the functions that were extracted for it. -/
structure Compiled where
  source : String
  actions : List Resolved.Action
  deriving Repr

/-- The document of a parser. -/
def writeParser (p : Resolved.Parser) (o : Options) : Except Lowering.Failure Compiled :=
  (Lowering.lower p o).map fun m =>
    ⟨Text.tidy ((m.doc o.page).plain o.page.width), p.actions⟩

/-- The document of a grammar. -/
def compile (g : Grammar) (types : ActionTypes) (o : Options) : Except CompileError Compiled :=
  match Resolution.resolve g types with
  | .error failure => .error (.resolution failure)
  | .ok p =>
    match writeParser p o with
    | .error failure => .error (.lowering failure)
    | .ok compiled => .ok compiled

end PegCompiler
