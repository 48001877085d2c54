import PegCompiler.Resolution.Context
/-!
  The parts of resolution that do not look below one node: labels, character
  classes, rule calls, predicates, and the value of a row.

  Correspondence (program ↔ here):
    `check_label`                                     ↔ `checkLabel`, `labelDefect`
    `ToIR` of `CharClass`                             ↔ `resolveClass`, `classTests`
    `rule_call`                                       ↔ `ruleCall`
    `ToIR` of `Predicate`                             ↔ `resolvePredicate`, `predicateParams`
    `predicate_sources`                               ↔ `predicateSources`
    `Lowered`, the lists that `Sequence::to_ir` fills ↔ `ResolvedElement`, `Row`
    `action_result`, `concat_result`                  ↔ `actionValue`, `concatResult`
-/

namespace PegCompiler.Resolution

open Grammar (ClassItem Predicate PredicateParam)
open Resolved (AltResult ClassTest Param RuleCall ValueType resultVar sameName isIdentifier)

/-- Refuses the node. -/
def refuse {α : Type} (ctx : Context) (defect : Defect) : Resolve α :=
  throw (ctx.malformed defect)

/-- Tells a step. -/
def note (n : Note) : Resolve Unit :=
  modify (fun out => out.addNote n)

/-- What is wrong with a label, if anything: it becomes the name of a
parameter. -/
def labelDefect (ctx : Context) (label : String) : Option Defect :=
  if !isIdentifier label then some (.invalidLabel label)
  else if sameName label resultVar then some (.reservedLabel label)
  else if (ctx.lookupLabel label).isSome then some (.repeatedLabel label)
  else none

/-- Refuses an element whose label is unusable. -/
def checkLabel (ctx : Context) : Option String → Resolve Unit
  | none => pure ()
  | some label =>
    match labelDefect ctx label with
    | some defect => refuse ctx defect
    | none => pure ()

/-! ## Character classes -/

/-- Whether a character is an ASCII one. -/
def isAscii (c : Char) : Bool :=
  c.toNat < 128

/-- What is wrong with an item of a class, if anything. -/
def itemDefect : ClassItem → Option Defect
  | .char c => if isAscii c then none else some (.foreignChar c)
  | .range bottom top =>
    if !isAscii bottom || !isAscii top then some (.foreignRange bottom top)
    else if top < bottom then some (.reversedRange bottom top)
    else none

/-- The first thing wrong with a class, if any. -/
def classDefect : List ClassItem → Option Defect
  | [] => some .emptyClass
  | items => items.findSome? itemDefect

/-- The tests of a class: characters next to each other are tested together, and
ranges keep their places between them. -/
def classTests : List ClassItem → List ClassTest
  | [] => []
  | .char c :: rest =>
    match classTests rest with
    | .set chars :: tests => .set (String.ofList [c] ++ chars) :: tests
    | tests => .set (String.ofList [c]) :: tests
  | .range bottom top :: rest => .range bottom top :: classTests rest

/-- The tests of a class that has nothing wrong. -/
def resolveClass (ctx : Context) (items : List ClassItem) : Resolve (List ClassTest) :=
  match classDefect items with
  | some defect => refuse ctx defect
  | none => pure (classTests items)

/-! ## Calls and predicates -/

/-- The call of a rule. A call of an undefined rule is recorded and goes on as
one of a rule that produces text. -/
def ruleCall (env : Env) (ctx : Context) (target : String) : Resolve RuleCall :=
  match env.rule target with
  | some info => pure ⟨target, info.function, info.resultType⟩
  | none => do
    note (.unresolved target ctx.rule)
    modify (fun out => out.addUnresolved ⟨ctx.rule, ctx.ruleAlternative, target⟩)
    pure ⟨target, "", .text⟩

/-- The binding that a source of a predicate names: a label, or else a rule whose
value was captured before. -/
def sourceBinding (ctx : Context) (source : String) : Option Binding :=
  (ctx.lookupLabel source).or (ctx.lookupRuleValue source)

/-- The parameters of a predicate and the variables they take their values from,
behind the parameters before them. -/
def predicateParams (ctx : Context) (params : List Param) (args : List String) :
    List PredicateParam → Resolve (List Param × List String)
  | [] => pure (params, args)
  | p :: rest =>
    if !isIdentifier p.name || sameName p.name resultVar then refuse ctx (.invalidParam p.name)
    else if params.any (fun q => sameName q.name p.name) then refuse ctx (.repeatedParam p.name)
    else match sourceBinding ctx p.source with
      | none => refuse ctx (.unknownSource p.source)
      | some binding =>
        predicateParams ctx (params ++ [⟨p.name, binding.type⟩]) (args ++ [binding.var]) rest

/-- Extracts a predicate into a function and gives the call of it. -/
def resolvePredicate (ctx : Context) (p : Predicate) : Resolve Resolved.ActionCall := do
  if ctx.separator then
    refuse ctx .predicateInSeparator
  let type := Text.trimmed p.returnType
  if type != "" && !sameName type "logical" then
    refuse ctx (.predicateType type)
  let (params, args) ← predicateParams ctx [] [] p.params
  let index ← modifyGet (fun out => out.nextPredicate ctx.rule)
  let function := Resolved.predicateFunction ctx.base index
  modify (fun out => out.addAction
    ⟨.predicate, function, params, .declared "logical", p.code⟩)
  pure ⟨function, args⟩

/-- The sources that the predicates right in a row name. -/
def predicateSources (elements : List Grammar.Element) : List String :=
  elements.flatMap fun
    | .check _ (.predicate p) => p.params.map (fun q => q.source)
    | _ => []

/-! ## The value of a row -/

/-- What the elements of a row have bound so far. -/
structure Row where
  labels : List Binding := []
  ruleValues : List Binding := []
  /-- The variables and types of plucked captures. -/
  plucks : List (String × ValueType) := []
  deriving DecidableEq, Repr

/-- An element after resolution. -/
structure ResolvedElement where
  element : Resolved.Element
  label : Option String := none
  /-- The rule whose value the element captures. -/
  rule : Option String := none
  plucked : Bool := false

/-- The row with what an element binds. -/
def Row.add (row : Row) (e : ResolvedElement) : Row :=
  match e.element.capture with
  | none => row
  | some capture =>
    { labels := row.labels ++ (e.label.map fun l => ⟨l, capture.var, capture.type⟩).toList
      ruleValues := row.ruleValues ++ (e.rule.map fun r => ⟨r, capture.var, capture.type⟩).toList
      plucks := row.plucks ++ (if e.plucked then [(capture.var, capture.type)] else []) }

/-- The value of a row without an action: nothing captured is the consumed text,
one capture is its value, and several are put together if all are texts. -/
def concatResult (ctx : Context) : List (String × ValueType) → Resolve (AltResult × ValueType)
  | [] => pure (.consumed, .text)
  | [(var, type)] => pure (.capture var, type)
  | captures =>
    match captures.find? (fun c => !c.2.isText) with
    | some (var, type) => refuse ctx (.mixedConcat var type)
    | none => pure (.concat (captures.map (fun c => c.1)), .text)

/-- Extracts an action into a function of the labeled captures and gives the
call of it. -/
def actionValue (env : Env) (ctx : Context) (labels : List Binding) (code : String) :
    Resolve (AltResult × ValueType) := do
  if ctx.isNested then
    refuse ctx .actionInGroup
  let type := Resolved.actionResult env.types ctx.rule ctx.alternative
  let function := Resolved.actionFunction ctx.base ctx.alternative
  modify (fun out => out.addAction
    ⟨.action, function, labels.map (fun b => ⟨b.label, b.type⟩), type, code⟩)
  pure (.action ⟨function, labels.map (fun b => b.var)⟩, type)

/-- The value of a row: that of its action, else of its plucked captures, else
of its labeled ones. -/
def rowValue (env : Env) (ctx : Context) (row : Row) (action : Option String) :
    Resolve (AltResult × ValueType) :=
  match action with
  | some code => actionValue env ctx row.labels code
  | none =>
    if row.plucks.isEmpty then concatResult ctx (row.labels.map fun b => (b.var, b.type))
    else concatResult ctx row.plucks

end PegCompiler.Resolution
