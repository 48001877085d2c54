import PegCompiler.Grammar.Kind
import PegCompiler.Resolved.ValueType
/-!
  What can be wrong with a grammar. A defect makes the grammar unusable at one
  place; references to undefined rules are collected over the whole grammar.

  Correspondence (program ↔ here):
    `Location` and its `Display` ↔ `Location`, `Location.shown`
    `BackendError::malformed`    ↔ `Malformed`, its reasons `Defect`
    `UnresolvedRuleReference`    ↔ `Unresolved`
-/

namespace PegCompiler.Resolution

open Grammar (NodeKind)
open Resolved (ValueType)

/-- Where a defect was found. -/
inductive Location where
  | grammar
  | rule (rule : String)
  /-- An alternative of a rule, not one of a group. -/
  | alternative (rule : String) (alternative : Nat)
  deriving DecidableEq, Repr

/-- A location in messages. -/
def Location.shown : Location → String
  | .grammar => "the grammar"
  | .rule id => "rule `" ++ id ++ "`"
  | .alternative id index => "rule `" ++ id ++ "`, alternative " ++ toString index

/-- A cause for refusing a grammar. -/
inductive Defect where
  | duplicateRule
  | noStartRule
  | severalStartRules (ids : List String)
  | emptyChoice
  | invalidLabel (label : String)
  | reservedLabel (label : String)
  | repeatedLabel (label : String)
  | capturedGroupType (type : ValueType)
  | zeroCount
  | unboundedRange
  | zeroUpperBound
  | reversedBounds (min max : UInt32)
  | blankBound
  | emptyClass
  | foreignChar (c : Char)
  | foreignRange (bottom top : Char)
  | reversedRange (bottom top : Char)
  | predicateInSeparator
  | predicateType (type : String)
  | invalidParam (name : String)
  | repeatedParam (name : String)
  | unknownSource (source : String)
  | actionInGroup
  | mixedConcat (var : String) (type : ValueType)
  | resultType (found expected : ValueType)
  /-- A defect that the caller states itself. -/
  | stated (kind : NodeKind) (reason : String)
  deriving DecidableEq, Repr

/-- The kind of node that has the defect. -/
def Defect.kind : Defect → NodeKind
  | .duplicateRule => .rule
  | .noStartRule | .severalStartRules _ => .grammar
  | .emptyChoice | .capturedGroupType _ => .choice
  | .invalidLabel _ | .reservedLabel _ | .repeatedLabel _ => .labeled
  | .zeroCount | .unboundedRange | .zeroUpperBound | .reversedBounds _ _ | .blankBound => .annotated
  | .emptyClass | .foreignChar _ => .charClass
  | .foreignRange _ _ | .reversedRange _ _ => .range
  | .predicateInSeparator | .predicateType _ | .invalidParam _ | .repeatedParam _
  | .unknownSource _ => .predicate
  | .actionInGroup => .action
  | .mixedConcat _ _ | .resultType _ _ => .sequence
  | .stated kind _ => kind

/-- A text between back quotes. -/
def named (s : String) : String := "`" ++ s ++ "`"

/-- The two ends of a character range. -/
def rangeText (bottom top : Char) : String := named (String.ofList [bottom, '-', top])

/-- The wording of a defect. -/
def Defect.reason : Defect → String
  | .duplicateRule => "the rule id is defined more than once"
  | .noStartRule => "the grammar has no start rule"
  | .severalStartRules ids => "the grammar has several start rules: " ++ ", ".intercalate ids
  | .emptyChoice => "a choice needs at least one alternative"
  | .invalidLabel label => named label ++ " is not a valid Fortran identifier"
  | .reservedLabel label => named label ++ " is reserved for action results"
  | .repeatedLabel label => named label ++ " is bound more than once in the same alternative"
  | .capturedGroupType type => "a captured group must produce text, found " ++ named type.shown
  | .zeroCount => "a repetition count must be positive"
  | .unboundedRange => "a range needs at least one bound"
  | .zeroUpperBound => "the upper bound of a range must be positive"
  | .reversedBounds min max =>
    "the range " ++ toString min.toNat ++ ".." ++ toString max.toNat ++ " is empty"
  | .blankBound => "a repetition bound expression is empty"
  | .emptyClass => "a character class must not be empty"
  | .foreignChar c => named (String.ofList [c]) ++ " is not an ASCII character"
  | .foreignRange bottom top => rangeText bottom top ++ " is not an ASCII range"
  | .reversedRange bottom top => "the range " ++ rangeText bottom top ++ " is empty"
  | .predicateInSeparator => "predicates are not supported in repetition separators"
  | .predicateType type => "a predicate must return `logical`, not " ++ named type
  | .invalidParam name => named name ++ " cannot be used as a parameter name"
  | .repeatedParam name => "the parameter " ++ named name ++ " is declared more than once"
  | .unknownSource source =>
    named source ++ " is neither a label nor a rule referenced earlier in the same alternative"
  | .actionInGroup => "semantic actions are only supported on the alternatives of a rule"
  | .mixedConcat var type =>
    "cannot concatenate " ++ named var ++ " of type " ++ named type.shown ++
      " with other captured values"
  | .resultType found expected =>
    "the alternative produces a value of type " ++ named found.shown ++
      " but the rule produces " ++ named expected.shown
  | .stated _ reason => reason

/-- A defect and its place. -/
structure Malformed where
  location : Location
  defect : Defect
  deriving DecidableEq, Repr

/-- The message of a defect. -/
def Malformed.message (m : Malformed) : String :=
  "Malformed " ++ m.defect.kind.name ++ " in " ++ m.location.shown ++ ": " ++ m.defect.reason

/-- A reference to a rule that the grammar does not define. -/
structure Unresolved where
  rule : String
  /-- The alternative of the rule that the reference stands in, at any depth. -/
  alternative : Nat
  target : String
  deriving DecidableEq, Repr

/-- The message of an unresolved reference. -/
def Unresolved.message (u : Unresolved) : String :=
  "Rule " ++ named u.rule ++ " (alternative " ++ toString u.alternative ++
    ") refers to the undefined rule " ++ named u.target

/-- Why a grammar has no resolved form. -/
inductive Failure where
  | malformed (m : Malformed)
  | unresolved (references : List Unresolved)
  deriving DecidableEq, Repr

end PegCompiler.Resolution
