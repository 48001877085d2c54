import PegCompiler.Resolved.ValueType
/-!
  Resolved grammars: rules, captures, result types and extracted functions all
  have their names, and control flow is still that of the grammar: ordered
  choice, rows, repetition and lookahead.

  Correspondence (program ↔ here):
    `Parser`, `RuleFn`, `ActionFn`, `Param`      ↔ `Parser`, `Rule`, `Action`, `Param`
    `Choice`, `Sequence`, `Element`, `Capture`   ↔ `Choice`, `Alternative`, `Element`, `Capture`
    `Matcher`, `Terminal`, `Repeat`, `Lookahead` ↔ `Matcher`
    `LookaheadBody`                              ↔ `Matcher.lookahead`, `Matcher.predicate`
    `AltResult`, `ActionCall`                    ↔ `AltResult`, `ActionCall`
    `RuleCall`, `Bound`, `ClassTest`             ↔ `RuleCall`, `Bound`, `ClassTest`
    `Sequence::captures`, `Parser::start_rule`   ↔ `Alternative.captures`, `Parser.startRule`
-/

namespace PegCompiler.Resolved

/-- A call of the function of an action or a predicate. -/
structure ActionCall where
  function : String
  args : List String
  deriving DecidableEq, Repr

/-- Where a capture gets its value from. -/
inductive CaptureSource where
  /-- The value of the rule or group that matched. -/
  | value
  /-- The input that was consumed. -/
  | text
  deriving DecidableEq, Repr

/-- A variable that holds what an element matched. -/
structure Capture where
  var : String
  type : ValueType
  source : CaptureSource
  deriving DecidableEq, Repr

/-- The value of an alternative whose elements have all matched. -/
inductive AltResult where
  /-- The input that the alternative consumed. -/
  | consumed
  | capture (var : String)
  /-- The texts of several captures in a row. -/
  | concat (vars : List String)
  | action (call : ActionCall)
  deriving DecidableEq, Repr

/-- One test of a character class. -/
inductive ClassTest where
  /-- One of the given characters. -/
  | set (chars : String)
  | range (bottom top : Char)
  deriving DecidableEq, Repr

/-- A call of a rule. -/
structure RuleCall where
  rule : String
  function : String
  resultType : ValueType
  deriving DecidableEq, Repr

/-- A bound of a repetition. -/
inductive Bound where
  | count (n : Nat)
  /-- An expression of the target language, evaluated once. -/
  | code (expr : String)
  deriving DecidableEq, Repr

mutual

/-- What matches input. -/
inductive Matcher where
  | literal (value : String)
  | class (tests : List ClassTest)
  | anyChar
  | endOfInput
  | call (call : RuleCall)
  | choice (choice : Choice)
  /-- At least `min` and at most `max` matches, unbounded without `max`, with a
  separator between each two if there is one. -/
  | repeat (body : Matcher) (min : Bound) (max : Option Bound) (separator : Option Matcher)
  /-- Whether the body matches, or does not if negated; consumes nothing. -/
  | lookahead (negated : Bool) (body : Matcher)
  /-- Whether a condition in code holds, or does not if negated. -/
  | predicate (negated : Bool) (call : ActionCall)

/-- An ordered choice, and the variable that receives its value if anybody reads
it. -/
structure Choice where
  alternatives : List Alternative
  result : Option String

/-- A row of elements and the value it has. -/
structure Alternative where
  elements : List Element
  result : AltResult
  resultType : ValueType

/-- A matcher and the variable that captures what it matched. -/
structure Element where
  matcher : Matcher
  capture : Option Capture

end

deriving instance Repr for Matcher, Choice, Alternative, Element

/-- The captures of a row, in the order of its elements. -/
def Alternative.captures (a : Alternative) : List Capture :=
  a.elements.filterMap (fun e => e.capture)

/-- A rule and its function. -/
structure Rule where
  id : String
  function : String
  start : Bool
  resultType : ValueType
  body : Choice
  deriving Repr

/-- A parameter of an extracted function. -/
structure Param where
  name : String
  type : ValueType
  deriving DecidableEq, Repr

/-- What a function was extracted from. -/
inductive ActionKind where
  | action | predicate
  deriving DecidableEq, Repr

/-- A function made of the code of an action or a predicate. -/
structure Action where
  kind : ActionKind
  function : String
  params : List Param
  resultType : ValueType
  code : String
  deriving DecidableEq, Repr

/-- A parser: the rules of the grammar in their order, and the extracted
functions in the order in which they were found. -/
structure Parser where
  prologue : Option String := none
  epilogue : Option String := none
  rules : List Rule
  actions : List Action
  deriving Repr

/-- The first start rule. -/
def Parser.startRule (p : Parser) : Option Rule :=
  p.rules.find? (fun r => r.start)

/-- The first rule with an id. -/
def Parser.rule (p : Parser) (id : String) : Option Rule :=
  p.rules.find? (fun r => r.id == id)

end PegCompiler.Resolved
