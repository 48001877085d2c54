import PegCompiler.Resolution.Rows
/-!
  Resolution of a grammar. The nodes are visited in the order of the grammar, a
  repeated body before its separator; the first defect ends resolution, and
  undefined references are reported when there is none.

  Correspondence (program ↔ here):
    `grammar_to_ir`                  ↔ `resolve`
    `check_rules`                    ↔ `rulesDefect`
    `rule_to_ir`                     ↔ `resolveRule`, its check of types `typeConflict`
    `ToIR` of `Choice`, `Sequence`   ↔ `resolveChoice`, `resolveAlternative`
    `element_to_ir`, `labeled_to_ir` ↔ `resolveElement`
    `assertion_to_ir`, `group_to_ir` ↔ its cases `check` and `group`
    `ToIR` of `Annotated`            ↔ `resolveQuantified`, `resolveQuantifier`
    `dynamic_bound`                  ↔ `computedBound`
    `ToIR` of `Expr`                 ↔ `resolveExpr`
-/

namespace PegCompiler.Resolution

open Grammar (Alternative Element Expr Quantified Quantifier Rule)
open Resolved (Bound Capture Matcher)

/-- A bound in code. -/
def computedBound (ctx : Context) : Option String → Resolve (Option Bound)
  | none => pure none
  | some code =>
    if Text.isBlankText code then refuse ctx .blankBound
    else pure (some (.code (Text.trimmed code)))

/-- An exact number of matches, which has to be positive. -/
def exactBounds (ctx : Context) (count : UInt32) : Resolve (Bound × Option Bound) :=
  if count == 0 then refuse ctx .zeroCount
  else pure (.count count.toNat, some (.count count.toNat))

/-- What is wrong with the bounds of a range, if anything. -/
def rangeDefect : Option UInt32 → Option UInt32 → Option Defect
  | none, none => some .unboundedRange
  | min, some max =>
    if max == 0 then some .zeroUpperBound
    else match min with
      | some min => if max < min then some (.reversedBounds min max) else none
      | none => none
  | some _, none => none

/-- The bounds of a range. -/
def rangeBounds (ctx : Context) (min max : Option UInt32) : Resolve (Bound × Option Bound) :=
  match rangeDefect min max with
  | some defect => refuse ctx defect
  | none => pure (.count ((min.map UInt32.toNat).getD 0), max.map (fun n => .count n.toNat))

/-- A matcher repeated between bounds. -/
def repeated (ctx : Context) (body : Matcher) (bounds : Bound × Option Bound)
    (separator : Option Matcher) : Resolve Matcher := do
  note (.repetition bounds.1 bounds.2 ctx.rule)
  pure (.repeat body bounds.1 bounds.2 separator)

/-- An element that captures nothing. -/
def uncaptured (plucked : Bool) (matcher : Matcher) : ResolvedElement :=
  { element := ⟨matcher, none⟩, plucked }

/-- An element that captures into the variable of its place. -/
def captured (ctx : Context) (plucked : Bool) (label rule : Option String) (matcher : Matcher)
    (type : Resolved.ValueType) (source : Resolved.CaptureSource) : ResolvedElement :=
  { element := ⟨matcher, some ⟨Resolved.captureVar ctx.alternative ctx.position, type, source⟩⟩
    label, rule, plucked }

/-- Refuses the alternatives of a captured group that do not produce text. -/
def checkGroup (ctx : Context) (alternatives : List Resolved.Alternative) : Resolve Unit :=
  match alternatives.find? (fun a => !a.resultType.isText) with
  | some a => refuse ctx (.capturedGroupType a.resultType)
  | none => pure ()

/-- Refuses a choice without alternatives. -/
def checkChoice (ctx : Context) (alternatives : List Alternative) : Resolve Unit :=
  if alternatives.isEmpty then refuse ctx .emptyChoice else pure ()

mutual

/-- Alternatives of a choice, counted from `index`. -/
def resolveAlternatives (env : Env) (ctx : Context) (index : Nat)
    (alternatives : List Alternative) : Resolve (List Resolved.Alternative) :=
  match alternatives with
  | [] => pure []
  | a :: rest => do
    note (.alternative index ctx.rule ctx.path)
    let a ← resolveAlternative env (ctx.enterAlternative index) a
    let rest ← resolveAlternatives env ctx (index + 1) rest
    pure (a :: rest)

/-- A row of elements and its value. -/
def resolveAlternative (env : Env) (ctx : Context) (alternative : Alternative) :
    Resolve Resolved.Alternative :=
  match alternative with
  | ⟨elements, action⟩ => do
    let ctx := ctx.enterRow (predicateSources elements)
    let (elements, row) ← resolveElements env ctx 0 {} elements
    let (result, type) ← rowValue env ctx row action
    pure ⟨elements, result, type⟩

/-- The elements of a row from a position on, and what the row has bound. -/
def resolveElements (env : Env) (ctx : Context) (position : Nat) (row : Row)
    (elements : List Element) : Resolve (List Resolved.Element × Row) :=
  match elements with
  | [] => pure ([], row)
  | e :: rest => do
    let e ← resolveElement env (ctx.enterElement position row.labels row.ruleValues) e
    let (rest, row) ← resolveElements env ctx (position + 1) (row.add e) rest
    pure (e.element :: rest, row)

/-- An element. Where values are kept, a plucked or labeled item is captured, and
so is a plain reference that a predicate of the row takes its value from. A plain
reference or group is captured by its value, anything else by its text. -/
def resolveElement (env : Env) (ctx : Context) (element : Element) : Resolve ResolvedElement :=
  match element with
  | .check negated (.predicate p) => do
    let call ← resolvePredicate ctx p
    pure (uncaptured false (.predicate negated call))
  | .check negated (.lookahead body) => do
    let body ← resolveQuantified env ctx.enterLookahead body
    pure (uncaptured false (.lookahead negated body))
  | .item plucked label ⟨.ruleRef target, .one⟩ => do
    checkLabel ctx label
    let call ← ruleCall env ctx target
    if ctx.capturing && (plucked || label.isSome || ctx.isPredicateSource target) then
      pure (captured ctx plucked label (some target) (.call call) call.resultType .value)
    else pure (uncaptured plucked (.call call))
  | .item plucked label ⟨.group alternatives, .one⟩ => do
    checkLabel ctx label
    checkChoice ctx.enterGroup alternatives
    let alternatives ← resolveAlternatives env ctx.enterGroup 0 alternatives
    if ctx.capturing && (plucked || label.isSome) then
      checkGroup ctx alternatives
      let group : Resolved.Choice := ⟨alternatives, some (Resolved.groupVar ctx.groupPath)⟩
      pure (captured ctx plucked label none (.choice group) .text .value)
    else pure (uncaptured plucked (.choice ⟨alternatives, none⟩))
  | .item plucked label body => do
    checkLabel ctx label
    let matcher ← resolveQuantified env ctx body
    if ctx.capturing && (plucked || label.isSome) then
      pure (captured ctx plucked label none matcher .text .text)
    else pure (uncaptured plucked matcher)

/-- An expression with its quantifier. -/
def resolveQuantified (env : Env) (ctx : Context) (body : Quantified) : Resolve Matcher :=
  match body with
  | ⟨expr, quantifier⟩ => do
    let body ← resolveExpr env ctx expr
    resolveQuantifier env ctx body quantifier

/-- A resolved matcher repeated as a quantifier says. -/
def resolveQuantifier (env : Env) (ctx : Context) (body : Matcher) (quantifier : Quantifier) :
    Resolve Matcher :=
  match quantifier with
  | .one => pure body
  | .optional => repeated ctx body (.count 0, some (.count 1)) none
  | .zeroOrMore => repeated ctx body (.count 0, none) none
  | .oneOrMore => repeated ctx body (.count 1, none) none
  | .exact count => do
    let bounds ← exactBounds ctx count
    repeated ctx body bounds none
  | .range min max => do
    let bounds ← rangeBounds ctx min max
    repeated ctx body bounds none
  | .separated count separator => do
    let bounds ← exactBounds ctx count
    let separator ← resolveExpr env ctx.enterSeparator separator
    repeated ctx body bounds (some separator)
  | .computed min max => do
    let min ← computedBound ctx min
    let max ← computedBound ctx max
    repeated ctx body (min.getD (.count 0), max) none

/-- An expression. -/
def resolveExpr (env : Env) (ctx : Context) (expr : Expr) : Resolve Matcher :=
  match expr with
  | .literal value => pure (.literal value)
  | .class items => do
    let tests ← resolveClass ctx items
    pure (.class tests)
  | .ruleRef target => do
    let call ← ruleCall env ctx target
    pure (.call call)
  | .anyChar => pure .anyChar
  | .endOfInput => pure .endOfInput
  | .group alternatives => do
    checkChoice ctx.enterGroup alternatives
    let alternatives ← resolveAlternatives env ctx.enterGroup 0 alternatives
    pure (.choice ⟨alternatives, none⟩)

end

/-- The alternatives of a choice, of which there has to be one. -/
def resolveChoice (env : Env) (ctx : Context) (alternatives : List Alternative) :
    Resolve (List Resolved.Alternative) := do
  checkChoice ctx alternatives
  resolveAlternatives env ctx 0 alternatives

/-- The first alternative whose value is not of the type of its rule. Calls of
undefined rules are typed as text, so an alternative with one is passed over. -/
def typeConflict (out : Emitted) (rule : String) (expected : Resolved.ValueType)
    (alternatives : List Resolved.Alternative) : Option Malformed :=
  alternatives.zipIdx.findSome? fun (a, index) =>
    if out.hasUnresolved rule index || a.resultType.sameAs expected then none
    else some ⟨.alternative rule index, .resultType a.resultType expected⟩

/-- What is known of a rule. The table is made of all rules that are resolved and
leaves none of them out (`rule_ofRules_of_mem`); for one that it left out the
program has an internal error, and here it has the base it would have alone. -/
def Env.info (env : Env) (rule : Rule) : RuleInfo :=
  (env.rule rule.id).getD
    (let base : Resolved.BaseName := ⟨Resolved.sanitize rule.id, none⟩
     ⟨base, Resolved.ruleFunction base, ruleResult rule env.types⟩)

/-- A rule. -/
def resolveRule (env : Env) (rule : Rule) : Resolve Resolved.Rule := do
  let info := env.info rule
  note (.rule rule.id info.function)
  let ctx : Context := { rule := rule.id, base := info.base, start := rule.start }
  let alternatives ← resolveChoice env ctx rule.alternatives
  match typeConflict (← get) rule.id info.resultType alternatives with
  | some m => throw m
  | none =>
    pure ⟨rule.id, info.function, rule.start, info.resultType,
      ⟨alternatives, some Resolved.resultVar⟩⟩

/-- The first rule id that an earlier rule has. -/
def repeatedId (seen : List String) : List String → Option String
  | [] => none
  | id :: rest => if seen.contains id then some id else repeatedId (id :: seen) rest

/-- What is wrong with the rules of a grammar as a whole, if anything. -/
def rulesDefect (rules : List Rule) : Option Malformed :=
  match repeatedId [] (rules.map (fun r => r.id)) with
  | some id => some ⟨.rule id, .duplicateRule⟩
  | none =>
    match (rules.filter (fun r => r.start)).map (fun r => r.id) with
    | [_] => none
    | [] => some ⟨.grammar, .noStartRule⟩
    | ids => some ⟨.grammar, .severalStartRules ids⟩

/-- All rules of a grammar. -/
def resolveRules (g : Grammar) (types : ActionTypes) : Resolve (List Resolved.Rule) :=
  match rulesDefect g.rules with
  | some m => throw m
  | none => g.rules.mapM (resolveRule (.ofRules g.rules types))

/-- The resolved form of a grammar, and the steps on the way. -/
def resolveNoted (g : Grammar) (types : ActionTypes) :
    Except Failure Resolved.Parser × List Note :=
  match (resolveRules g types).run.run {} with
  | (.error m, out) => (.error (.malformed m), out.notes)
  | (.ok rules, out) =>
    if out.unresolved.isEmpty then
      (.ok ⟨g.prologue, g.epilogue, rules, out.actions⟩,
        out.notes ++ [.finished rules.length out.actions.length])
    else (.error (.unresolved out.unresolved), out.notes)

/-- The resolved form of a grammar. -/
def resolve (g : Grammar) (types : ActionTypes) : Except Failure Resolved.Parser :=
  (resolveNoted g types).1

end PegCompiler.Resolution
