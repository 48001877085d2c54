import PegCompiler.Grammar.Syntax
import PegCompiler.Resolution.Error
import PegCompiler.Resolved.Names
import PegCompiler.Resolved.Syntax
/-!
  What resolution knows and what it leaves behind. A context says where in the
  grammar a node stands and is derived, never changed; the rule table is made
  before the first rule is resolved; what is extracted on the way is collected
  in the order in which it is found.

  Correspondence (program ↔ here):
    `GenCtx`                                      ↔ `Context`
    `alternative`, `sequence`, `element`          ↔ `enterAlternative`, `enterRow`, `enterElement`
    `group`, `lookahead`                          ↔ `enterGroup`, `enterLookahead`
    `in_separator`                                ↔ `enterSeparator`
    `lookup_label`, `lookup_rule_value`           ↔ `lookupLabel`, `lookupRuleValue`
    `Env::new`, `Env::rule`, `rule_result_type`   ↔ `Env.ofRules`, `Env.rule`, `ruleResult`
    `Emitted`, `next_predicate`, `has_unresolved` ↔ `Emitted`, `nextPredicate`, `hasUnresolved`
    the calls of `log::debug` and `log::trace`    ↔ `Note`
-/

namespace PegCompiler.Resolution

open Resolved (BaseName RuleNames ValueType)

/-- A label, or the id of a rule, and the variable that holds its value. -/
structure Binding where
  label : String
  var : String
  type : ValueType
  deriving DecidableEq, Repr

/-- Where in the grammar a node stands. -/
structure Context where
  rule : String
  base : BaseName
  start : Bool
  /-- The alternative within the innermost choice. -/
  alternative : Nat := 0
  /-- The place of the element within its row. -/
  position : Nat := 0
  /-- The alternative and the position of every group around the node, outermost
  first. -/
  path : List (Nat × Nat) := []
  /-- The alternative of the rule that the node stands in. -/
  ruleAlternative : Nat := 0
  /-- Whether matched values are kept. -/
  capturing : Bool := true
  separator : Bool := false
  /-- The labels bound earlier in the row. -/
  labels : List Binding := []
  /-- The values of rules captured earlier in the row. -/
  ruleValues : List Binding := []
  /-- What the predicates of the row take values from. -/
  predicateSources : List String := []
  deriving DecidableEq, Repr

namespace Context

/-- Whether the node stands in a group. -/
def isNested (ctx : Context) : Bool :=
  !ctx.path.isEmpty

/-- The context of an alternative of the innermost choice. -/
def enterAlternative (ctx : Context) (index : Nat) : Context :=
  { ctx with
    alternative := index
    position := 0
    ruleAlternative := if ctx.isNested then ctx.ruleAlternative else index
    labels := []
    ruleValues := []
    predicateSources := [] }

/-- The context of a row whose predicates take values from `sources`. -/
def enterRow (ctx : Context) (sources : List String) : Context :=
  { ctx with predicateSources := sources }

/-- The context of an element, with what was bound before it. -/
def enterElement (ctx : Context) (position : Nat) (labels ruleValues : List Binding) : Context :=
  { ctx with position, labels, ruleValues }

/-- The path of a group at this place. -/
def groupPath (ctx : Context) : List (Nat × Nat) :=
  ctx.path ++ [(ctx.alternative, ctx.position)]

/-- The context inside a group at this place. -/
def enterGroup (ctx : Context) : Context :=
  { ctx with
    path := ctx.groupPath
    alternative := 0
    position := 0
    labels := []
    ruleValues := []
    predicateSources := [] }

/-- The context of the body of a lookahead. -/
def enterLookahead (ctx : Context) : Context :=
  { ctx with capturing := false }

/-- The context of a separator. -/
def enterSeparator (ctx : Context) : Context :=
  { ctx with capturing := false, separator := true }

/-- The first binding of a label, ignoring case. -/
def lookupLabel (ctx : Context) (label : String) : Option Binding :=
  ctx.labels.find? (fun b => Resolved.sameName b.label label)

/-- The latest value of a rule. -/
def lookupRuleValue (ctx : Context) (rule : String) : Option Binding :=
  ctx.ruleValues.reverse.find? (fun b => b.label == rule)

/-- Whether a predicate of the row names the rule as a source. -/
def isPredicateSource (ctx : Context) (rule : String) : Bool :=
  ctx.predicateSources.contains rule

/-- The location that messages give. -/
def location (ctx : Context) : Location :=
  .alternative ctx.rule ctx.ruleAlternative

/-- A defect of the node. -/
def malformed (ctx : Context) (defect : Defect) : Malformed :=
  ⟨ctx.location, defect⟩

end Context

/-- What is known of a rule before it is resolved. -/
structure RuleInfo where
  base : BaseName
  function : String
  resultType : ValueType
  deriving DecidableEq, Repr

/-- The type of a rule: the first declared one of its actions that is not text,
or else text. -/
def ruleResult (rule : Grammar.Rule) (types : ActionTypes) : ValueType :=
  ((rule.alternatives.zipIdx.filterMap fun (alternative, index) =>
    match alternative.action with
    | none => none
    | some _ => (types.declared rule.id index).map ValueType.ofDeclaration).find?
      (fun type => !type.isText)).getD .text

/-- The rule table and the declared types. -/
structure Env where
  types : ActionTypes
  rules : List (String × RuleInfo)

namespace Env

/-- The table of a list of rules. -/
def ofRules (rules : List Grammar.Rule) (types : ActionTypes) : Env :=
  let names := RuleNames.ofIds (rules.map (fun rule => rule.id))
  { types
    rules := rules.filterMap fun rule =>
      (names.base rule.id).map fun base =>
        (rule.id, ⟨base, Resolved.ruleFunction base, ruleResult rule types⟩) }

/-- What is known of a rule; of two rules with one id the later counts. -/
def rule (env : Env) (id : String) : Option RuleInfo :=
  env.rules.reverse.lookup id

end Env

/-- A step of resolution worth telling. -/
inductive Note where
  | rule (id function : String)
  | alternative (index : Nat) (rule : String) (path : List (Nat × Nat))
  | repetition (min : Resolved.Bound) (max : Option Resolved.Bound) (rule : String)
  | unresolved (target rule : String)
  | finished (rules actions : Nat)
  deriving DecidableEq, Repr

/-- What resolution has extracted so far. -/
structure Emitted where
  actions : List Resolved.Action := []
  unresolved : List Unresolved := []
  /-- The number of predicates extracted from each rule. -/
  predicates : List (String × Nat) := []
  notes : List Note := []
  deriving DecidableEq, Repr

namespace Emitted

/-- The number of predicates extracted from a rule. -/
def predicateCount (out : Emitted) (rule : String) : Nat :=
  (out.predicates.lookup rule).getD 0

/-- The place of the next predicate of a rule among them. -/
def nextPredicate (out : Emitted) (rule : String) : Nat × Emitted :=
  let index := out.predicateCount rule
  (index, { out with
    predicates := (rule, index + 1) :: out.predicates.filter (fun entry => entry.1 != rule) })

/-- Whether an alternative of a rule refers to an undefined one. -/
def hasUnresolved (out : Emitted) (rule : String) (alternative : Nat) : Bool :=
  out.unresolved.any (fun u => u.rule == rule && u.alternative == alternative)

/-- One more extracted function. -/
def addAction (out : Emitted) (action : Resolved.Action) : Emitted :=
  { out with actions := out.actions ++ [action] }

/-- One more unresolved reference. -/
def addUnresolved (out : Emitted) (reference : Unresolved) : Emitted :=
  { out with unresolved := out.unresolved ++ [reference] }

/-- One more note. -/
def addNote (out : Emitted) (note : Note) : Emitted :=
  { out with notes := out.notes ++ [note] }

end Emitted

/-- Resolution: it may find a defect, and what it has extracted until then
stays. -/
abbrev Resolve := ExceptT Malformed (StateM Emitted)

end PegCompiler.Resolution
