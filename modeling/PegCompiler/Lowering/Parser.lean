import PegCompiler.Lowering.Matcher
import PegCompiler.Target.Module
/-!
  Lowering of a parser to a module: one function for each rule, then one for each
  extracted action and predicate.

  The function of a rule says whether the rule matched and gives its value in its
  argument; when it does not match, the cursor is back where it was. The start
  rule matches only up to the end of the input.

  Correspondence (program ↔ here):
    `CodegenCfg`, `CodegenCfg::print_cfg` ↔ `Options`, `Options.page`
    `rule_to_fortran`                     ↔ `lowerRule`
    `action_to_fortran`                   ↔ `lowerAction`
    `ir_to_fortran`                       ↔ `lower`
    its checks of names                   ↔ `moduleFailure`, `functionFailure`
    its calls of `log::debug`             ↔ `notes`
-/

namespace PegCompiler

/-- What the author of a grammar can choose about the generated document. -/
structure Options where
  moduleName : String := "parser"
  /-- The module that has the input, the cursor and the primitive matches. -/
  runtimeModule : String := "peg_runtime"
  indent : UInt64 := 4
  width : UInt64 := 132
  deriving DecidableEq, Repr

/-- The page that the options describe: an indentation is read as a signed
number of 64 bits. -/
def Options.page (o : Options) : Layout.Page :=
  ⟨o.width.toNat, Int.bmod o.indent.toNat UInt64.size⟩

namespace Lowering

open Resolved (isIdentifier resultVar sameName)
open Target (Decl Expr Function Module Stmt)

/-- The variable that says whether a rule matched. -/
def acceptVar : String := "accept"

/-- The function of a rule. -/
def lowerRule (rule : Resolved.Rule) : Except Failure Function :=
  match (lowerChoice [.return] rule.body).run.run {} with
  | (.error failure, _) => .error failure
  | (.ok (choice, entry), scope) =>
    let atEnd : List Stmt :=
      if rule.start then [.when (.not (.call acceptEnd [])) [restore entry, .return]] else []
    .ok {
      recursive := true
      name := rule.function
      args := [resultVar]
      result := acceptVar
      decls :=
        [⟨rule.resultType.spec, ["intent(out)"], [resultVar]⟩, ⟨"logical", [], [acceptVar]⟩] ++
          scope.decls
      body := .stmts ([.assign acceptVar (.logical false)] ++ choice ++ atEnd ++
        [.assign acceptVar (.logical true)]) }

/-- The type of a parameter: a text may have any length. -/
def paramSpec : Resolved.ValueType → String
  | .text => "character(len=*)"
  | .declared name => name

/-- The function of an action or a predicate, around its code. -/
def lowerAction (action : Resolved.Action) : Function :=
  { recursive := false
    name := action.function
    args := action.params.map (fun p => p.name)
    result := resultVar
    decls := action.params.map (fun p => ⟨paramSpec p.type, ["intent(in)"], [p.name]⟩) ++
      [⟨action.resultType.spec, [], [resultVar]⟩]
    body := .verbatim action.code }

/-- What is wrong with the names of the two modules, if anything. -/
def moduleFailure (o : Options) : Option Failure :=
  if !isIdentifier o.moduleName then some (.moduleName o.moduleName)
  else if !isIdentifier o.runtimeModule then some (.moduleName o.runtimeModule)
  else if sameName o.moduleName o.runtimeModule then some (.equalModules o.moduleName)
  else none

/-- The first name that is no identifier or that an earlier one equals but for
case. -/
def functionFailure (seen : List String) : List String → Option Failure
  | [] => none
  | name :: rest =>
    if !isIdentifier name then some (.functionName name)
    else if seen.any (sameName name) then some (.repeatedFunction name)
    else functionFailure (name :: seen) rest

/-- The names of all functions of a parser. -/
def functionNames (p : Resolved.Parser) : List String :=
  p.rules.map (fun r => r.function) ++ p.actions.map (fun a => a.function)

/-- The module of a parser. -/
def lower (p : Resolved.Parser) (o : Options) : Except Failure Module :=
  match (moduleFailure o).or (functionFailure [] (functionNames p)) with
  | some failure => .error failure
  | none => do
    let rules ← p.rules.mapM lowerRule
    pure {
      name := o.moduleName
      uses := [o.runtimeModule]
      prologue := p.prologue
      functions := rules ++ p.actions.map lowerAction
      epilogue := p.epilogue }

/-- A step of lowering worth telling. -/
inductive Note where
  | rule (id function : String)
  | emitting (moduleName : String) (functions : Nat)
  deriving DecidableEq, Repr

/-- The notes on the rules up to the first that has no function. -/
def ruleNotes : List Resolved.Rule → List Note
  | [] => []
  | r :: rest =>
    .rule r.id r.function :: (match lowerRule r with
      | .ok _ => ruleNotes rest
      | .error _ => [])

/-- The steps of lowering a parser: none if a name is refused. -/
def notes (p : Resolved.Parser) (o : Options) : List Note :=
  match (moduleFailure o).or (functionFailure [] (functionNames p)), lower p o with
  | some _, _ => []
  | none, .ok m => ruleNotes p.rules ++ [.emitting o.moduleName m.functions.length]
  | none, .error _ => ruleNotes p.rules

end Lowering

end PegCompiler
