/-!
  Parsing expression grammars as their authors write them: rules over ordered
  alternatives, each a row of elements with an optional semantic action. The
  code of actions, predicates and computed bounds is text that nothing here
  looks into.

  Correspondence (program ↔ here):
    `Choice`, `Sequence`, `Action`            ↔ lists of `Alternative`, with their code
    `Labeled`, `Pluck`                        ↔ `Element.item`
    `Assertion`, `AssertionTarget`            ↔ `Element.check`, `Condition`
    `Annotated`, `Quantifier`                 ↔ `Quantified`, `Quantifier`
    `Expr`, `Literal`, `CharClass`, `RuleRef` ↔ `Expr`
    `Grammar::start_rule`, `Grammar::rule`    ↔ `Grammar.startRule`, `Grammar.rule`
-/

namespace PegCompiler.Grammar

/-- One item of a character class. -/
inductive ClassItem where
  | char (c : Char)
  | range (bottom top : Char)
  deriving DecidableEq, Repr

/-- The parameter `name` of a predicate takes the value captured under the label
`source`, or else the value of the rule `source`. -/
structure PredicateParam where
  name : String
  source : String
  deriving DecidableEq, Repr

/-- A condition in code. -/
structure Predicate where
  params : List PredicateParam
  returnType : String
  code : String
  deriving DecidableEq, Repr

mutual

/-- A row of elements; the code is that of its action, if it has one. -/
structure Alternative where
  elements : List Element
  action : Option String

/-- What stands in a row: a matched item, plucked into the result or not and
with a label or without, or a condition on what comes next. -/
inductive Element where
  | item (plucked : Bool) (label : Option String) (body : Quantified)
  | check (negated : Bool) (condition : Condition)

/-- The condition of a check. -/
inductive Condition where
  | predicate (p : Predicate)
  | lookahead (body : Quantified)

/-- An expression and how often it is matched. -/
structure Quantified where
  expr : Expr
  quantifier : Quantifier

/-- How often an expression is matched. -/
inductive Quantifier where
  | one
  | optional
  | zeroOrMore
  | oneOrMore
  | exact (count : UInt32)
  | range (min max : Option UInt32)
  /-- A fixed number of matches with a separator between each two. -/
  | separated (count : UInt32) (separator : Expr)
  /-- Bounds in code, evaluated before the first match. -/
  | computed (min max : Option String)

/-- A parsing expression. -/
inductive Expr where
  | literal (value : String)
  | class (items : List ClassItem)
  | ruleRef (target : String)
  | anyChar
  | endOfInput
  | group (alternatives : List Alternative)

end

deriving instance Repr for Alternative, Element, Condition, Quantified, Quantifier, Expr

/-- A named list of alternatives. -/
structure Rule where
  id : String
  start : Bool := false
  alternatives : List Alternative
  deriving Repr

end Grammar

/-- A grammar, with code to put in front of and behind what is made of it. -/
structure Grammar where
  rules : List Grammar.Rule
  prologue : Option String := none
  epilogue : Option String := none
  deriving Repr

/-- The first start rule. -/
def Grammar.startRule (g : Grammar) : Option Grammar.Rule :=
  g.rules.find? (fun r => r.start)

/-- The first rule with an id. -/
def Grammar.rule (g : Grammar) (id : String) : Option Grammar.Rule :=
  g.rules.find? (fun r => r.id == id)

end PegCompiler
